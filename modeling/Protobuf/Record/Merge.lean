import Protobuf.Record.Basic
import Protobuf.Wire.Skip

/-! Decoding messages.

Fields are read one after the other and merged into a record: scalars replace what was there,
repeated fields are appended to, and messages are merged field by field. Fields that the message
does not have are skipped. Messages nest at most as deep as a budget allows. What was read before a
failure stays. -/
namespace Protobuf.Record

/-- Merges the bytes of a message inside another, behind their length, into a record of its
type. -/
abbrev Nested := (type : Nat) → Record → Bytes → Merged Record

/-! ### One field -/

/-- Merges one message. A field without a message gets an unset one first. -/
def mergeMessage (s : Schema) (nested : Nested) (type : Nat) (wireType : WireType)
    (value : FieldValue) (bytes : Bytes) : Merged FieldValue :=
  let record := value.toRecord (s.unsetRecord type)
  match checkWireType .lengthDelimited wireType with
  | .error e => ⟨.message record, .error e⟩
  | .ok () => (nested type record bytes).map .message

/-- Appends a message; one that cannot be read is not appended. -/
def appendMessage (s : Schema) (nested : Nested) (type : Nat) (wireType : WireType)
    (value : FieldValue) (bytes : Bytes) : Merged FieldValue :=
  match checkWireType .lengthDelimited wireType with
  | .error e => ⟨.messages value.toRecords, .error e⟩
  | .ok () =>
    match nested type (s.unsetRecord type) bytes with
    | ⟨record, .ok rest⟩ => ⟨.messages (value.toRecords ++ [record]), .ok rest⟩
    | ⟨_, .error e⟩ => ⟨.messages value.toRecords, .error e⟩

/-- Merges the payload of a field into its value. -/
def mergeValue (s : Schema) (nested : Nested) (f : Field) (wireType : WireType)
    (value : FieldValue) (bytes : Bytes) : Merged FieldValue :=
  match f.type with
  | .message type =>
    if f.isRepeated then appendMessage s nested type wireType value bytes
    else mergeMessage s nested type wireType value bytes
  | _ =>
    let codec := f.type.codec
    if f.isRepeated then (codec.mergeRepeated wireType value.toScalars bytes).map .scalars
    else (codec.merge wireType (value.toScalar codec.zero) bytes).map .scalar

/-- Merges the payload of the field with this number, or skips it. -/
def mergeFieldWith (s : Schema) (nested : Nested) (budget type : Nat) (record : Record)
    (number : Nat) (wireType : WireType) (bytes : Bytes) : Merged Record :=
  match (s.fields type).findIdx? (·.number == number) with
  | none => ⟨record, Skip.field budget wireType number bytes⟩
  | some index =>
    match (s.fields type)[index]?, record[index]? with
    | some f, some value =>
      (mergeValue s nested f wireType value bytes).map fun v => record.set index v
    | _, _ => ⟨record, .ok bytes⟩

/-- Reads a key and merges the field behind it. -/
def mergeNextWith (s : Schema) (nested : Nested) (budget type : Nat) (record : Record)
    (bytes : Bytes) : Merged Record :=
  match Key.decode bytes with
  | .error e => ⟨record, .error e⟩
  | .ok ((number, wireType), rest) =>
    mergeFieldWith s nested budget type record number wireType rest

/-! ### Messages -/

/-- Merges a message inside another. Its fields have one level less of the budget. -/
def mergeNested (s : Schema) : (budget : Nat) → Nested
  | 0 => fun _ record _ => ⟨record, .error .recursionLimitReached⟩
  | budget + 1 => fun type record bytes =>
    Delimited.mergeDelimited (mergeNextWith s (mergeNested s budget) budget type) record bytes

def mergeField (s : Schema) (budget type : Nat) (record : Record) (number : Nat)
    (wireType : WireType) (bytes : Bytes) : Merged Record :=
  mergeFieldWith s (mergeNested s budget) budget type record number wireType bytes

def mergeNext (s : Schema) (budget type : Nat) (record : Record) (bytes : Bytes) : Merged Record :=
  mergeNextWith s (mergeNested s budget) budget type record bytes

/-- Merges all bytes into a record. -/
def merge (s : Schema) (type : Nat) (record : Record) (bytes : Bytes) : Merged Record :=
  Delimited.mergeWhile (mergeNext s recursionLimit type) 0 record bytes

/-- Merges the announced number of bytes into a record. -/
def mergeDelimited (s : Schema) (type : Nat) (record : Record) (bytes : Bytes) : Merged Record :=
  match Delimited.readBytes bytes with
  | .error e => ⟨record, .error e⟩
  | .ok (payload, _) => merge s type record payload

/-! ### Required fields -/

/-- A required field must be set. -/
def checkPresence (message : String) (f : Field) (value : FieldValue) : Except DecodeError Unit :=
  if f.cardinality = .required ∧ value.isAbsent then .error (.missingRequired message f.name)
  else .ok ()

mutual

/-- Checks the messages in a value. -/
def checkContents (s : Schema) (f : Field) : FieldValue → Except DecodeError Unit
  | .message record => checkFields s (s.nameInside f) (s.fieldsInside f) record
  | .messages records => checkRecords s f records
  | .absent | .scalar _ | .scalars _ => .ok ()

/-- Checks fields in order, each field's own presence before what is in it. -/
def checkFields (s : Schema) (message : String) (fields : List Field) :
    List FieldValue → Except DecodeError Unit
  | [] => .ok ()
  | value :: rest =>
    match fields with
    | [] => .ok ()
    | f :: others =>
      match checkPresence message f value with
      | .error e => .error e
      | .ok () =>
        match checkContents s f value with
        | .error e => .error e
        | .ok () => checkFields s message others rest

def checkRecords (s : Schema) (f : Field) : List (List FieldValue) → Except DecodeError Unit
  | [] => .ok ()
  | record :: rest =>
    match checkFields s (s.nameInside f) (s.fieldsInside f) record with
    | .error e => .error e
    | .ok () => checkRecords s f rest

end

/-- Whether every required field is set, at every depth. -/
def check (s : Schema) (type : Nat) (record : Record) : Except DecodeError Unit :=
  checkFields s (s.typeName type) (s.fields type) record

/-! ### Decoding -/

/-- The record that a merge gave, if it succeeded and lacks no required field. -/
def complete (s : Schema) (type : Nat) (m : Merged Record) : Except DecodeError Record :=
  match m.rest with
  | .error e => .error (.malformed e)
  | .ok _ =>
    match check s type m.state with
    | .error e => .error e
    | .ok () => .ok m.state

def decode (s : Schema) (type : Nat) (bytes : Bytes) : Except DecodeError Record :=
  complete s type (merge s type (s.unsetRecord type) bytes)

/-- Decodes a message behind its length. -/
def decodeDelimited (s : Schema) (type : Nat) (bytes : Bytes) : Except DecodeError Record :=
  complete s type (mergeDelimited s type (s.unsetRecord type) bytes)

end Protobuf.Record
