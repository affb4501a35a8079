import Protobuf.Schema.EnumValues

/-! Values of messages.

A record has a value for each field of its message type, in the order of declaration. Unset fields
are absent; fields with implicit presence are never absent, and repeated ones are lists. An enum
value is kept as its number, whether it is a known one or not. -/
namespace Protobuf

/-- The value of a field. -/
inductive FieldValue where
  | absent
  | scalar (value : ScalarValue)
  | scalars (values : List ScalarValue)
  | message (record : List FieldValue)
  | messages (records : List (List FieldValue))
  deriving Inhabited

/-- The values of the fields of a message. -/
abbrev Record := List FieldValue

namespace FieldType

/-- The codec of values that are not messages. Enums are laid out as `int32`. -/
def codec : FieldType → Codec ScalarValue
  | scalar type => type.codec
  | enum _ | message _ => Scalar.int32.codec

def isMessage : FieldType → Bool
  | message _ => true
  | _ => false

end FieldType

namespace Field

/-- The value of a field that nothing was read into. -/
def unset (f : Field) : FieldValue :=
  match f.cardinality with
  | .optional | .required => .absent
  | .implicit => .scalar f.type.codec.zero
  | .repeated => if f.type.isMessage then .messages [] else .scalars []

end Field

namespace FieldValue

/-- The value of a field, or `zero` if it has none. -/
def toScalar (zero : ScalarValue) : FieldValue → ScalarValue
  | scalar value => value
  | _ => zero

def toScalars : FieldValue → List ScalarValue
  | scalars values => values
  | _ => []

/-- The message of a field, or `unset` if it has none. -/
def toRecord (unset : Record) : FieldValue → Record
  | message record => record
  | _ => unset

def toRecords : FieldValue → List Record
  | messages records => records
  | _ => []

def isAbsent : FieldValue → Bool
  | absent => true
  | _ => false

end FieldValue

namespace Schema

/-- The fields of the message with this number. -/
def fields (s : Schema) (type : Nat) : List Field :=
  match s.messages[type]? with
  | some m => m.fields
  | none => []

/-- The fields of the message that a field holds. -/
def fieldsInside (s : Schema) (f : Field) : List Field :=
  match f.type with
  | .message index => s.fields index
  | _ => []

def typeName (s : Schema) (type : Nat) : String :=
  match s.messages[type]? with
  | some m => m.fullName.dotted
  | none => ""

/-- The name of the message that a field holds. -/
def nameInside (s : Schema) (f : Field) : String :=
  match f.type with
  | .message index => s.typeName index
  | _ => ""

/-- A message that nothing was read into. -/
def unsetRecord (s : Schema) (type : Nat) : Record :=
  (s.fields type).map Field.unset

end Schema

/-! ### Equality -/

mutual

/-- Equality of values, floats compared as numbers. -/
def FieldValue.same : FieldValue → FieldValue → Bool
  | .absent, .absent => true
  | .scalar a, .scalar b => a.sameValue b
  | .scalars as, .scalars bs =>
    as.length == bs.length && (as.zip bs).all fun (a, b) => a.sameValue b
  | .message a, .message b => sameRecord a b
  | .messages as, .messages bs => sameRecords as bs
  | _, _ => false

def sameRecord : List FieldValue → List FieldValue → Bool
  | [], [] => true
  | a :: as, b :: bs => a.same b && sameRecord as bs
  | _, _ => false

def sameRecords : List (List FieldValue) → List (List FieldValue) → Bool
  | [], [] => true
  | a :: as, b :: bs => sameRecord a b && sameRecords as bs
  | _, _ => false

end

end Protobuf
