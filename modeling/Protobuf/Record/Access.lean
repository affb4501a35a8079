import Protobuf.Record.Basic

/-! Accessors of the fields of a record.

An accessor gives the value of a field, or its default if the field is unset. The accessor of an
enum field gives a variant: a number that is none counts as unset. -/
namespace Protobuf.Record

/-- The value of an unset scalar field. -/
def scalarDefault (f : Field) : ScalarValue :=
  match f.default with
  | some (.scalar value) => value
  | _ => f.type.codec.zero

/-- The variant that an unset enum field has: that of its default value, or the first one. -/
def variantDefault? (e : Enum) (f : Field) : Option EnumValue :=
  match f.default with
  | some (.enumValue index) => (e.values[index]?).bind fun v => e.ofNumber? v.number
  | _ => e.default?

/-- The variant that an enum field has. -/
def variant? (e : Enum) (f : Field) (value : FieldValue) : Option EnumValue :=
  match value with
  | .scalar v => (e.ofNumber? v.toInt32).orElse fun _ => variantDefault? e f
  | _ => variantDefault? e f

/-- What an accessor gives. -/
inductive Accessed where
  | scalar (value : ScalarValue)
  | variant (value : EnumValue)

/-- What the accessor of a field gives, if it has one: repeated fields and messages have none, nor
have scalars with implicit presence. -/
def access? (s : Schema) (f : Field) (value : FieldValue) : Option Accessed :=
  match f.type, f.cardinality with
  | .scalar _, .optional | .scalar _, .required =>
    some (.scalar (value.toScalar (scalarDefault f)))
  | .enum index, .optional | .enum index, .required | .enum index, .implicit =>
    match s.enums[index]? with
    | some e => (variant? e f value).map .variant
    | none => none
  | _, _ => none

/-- The accessors of a record, with the names of their fields. -/
def accessAll (s : Schema) (type : Nat) (record : Record) : List (String × Accessed) :=
  ((s.fields type).zip record).filterMap fun (f, value) =>
    (access? s f value).map fun a => (f.name, a)

/-- Sets the enum field with this name to the variant that a value's name stands for. -/
def setVariant? (s : Schema) (type : Nat) (record : Record) (field value : String) :
    Option Record :=
  match (s.fields type).findIdx? (·.name == field) with
  | none => none
  | some index =>
    match (s.fields type)[index]? with
    | none => none
    | some f =>
      match f.type with
      | .enum e =>
        ((s.enums[e]?).bind (·.ofName? value)).map fun v =>
          record.set index (.scalar (.i32 v.number))
      | _ => none

end Protobuf.Record
