import Protobuf.Schema.Basic

/-! Default values: the constant of a `default` option as a value of the field's type.

Integers must lie in the range of the type. A float may be written as an integer, and a single
precision default is read in double precision first. -/
namespace Protobuf.Default

/-- An integer as a value of an integer type. -/
def ofInt (type : Scalar) (n : Int) : Except String ScalarValue :=
  let outOfRange : Except String ScalarValue :=
    .error ("value is out of range for type '" ++ type.name ++ "'")
  match type with
  | .int32 | .sint32 | .sfixed32 =>
    if -0x80000000 ≤ n ∧ n < 0x80000000 then .ok (.i32 (Int32.ofInt n)) else outOfRange
  | .int64 | .sint64 | .sfixed64 =>
    if -0x8000000000000000 ≤ n ∧ n < 0x8000000000000000 then .ok (.i64 (Int64.ofInt n))
    else outOfRange
  | .uint32 | .fixed32 =>
    if 0 ≤ n ∧ n < 0x100000000 then .ok (.u32 (UInt32.ofNat n.toNat)) else outOfRange
  | .uint64 | .fixed64 =>
    if 0 ≤ n ∧ n < 0x10000000000000000 then .ok (.u64 (UInt64.ofNat n.toNat)) else outOfRange
  | _ => outOfRange

/-- The double nearest to an integer literal. -/
def doubleOfInt (negative : Bool) (magnitude : UInt64) : Nat :=
  Binary.double.round negative magnitude.toNat 1

/-- Double precision bits in single precision. -/
def narrow (bits : Nat) : UInt32 :=
  UInt32.ofNat (Binary.double.convert Binary.single bits)

/-- A constant as a value of a scalar type. -/
def ofConstant (type : Scalar) (c : Decl.Constant) : Except String ScalarValue :=
  match type with
  | .bool =>
    match c with
    | .bool value => .ok (.bool value)
    | _ => .error "expected 'true' or 'false'"
  | .string =>
    match c with
    | .string bytes =>
      match Utf8.decode? bytes with
      | some text => .ok (.string text)
      | none => .error "string default is not valid utf-8"
    | _ => .error "expected a string"
  | .bytes =>
    match c with
    | .string bytes => .ok (.bytes bytes)
    | _ => .error "expected a string"
  | .float =>
    match c with
    | .float bits => .ok (.f32 (narrow bits.toNat))
    | .int negative magnitude => .ok (.f32 (narrow (doubleOfInt negative magnitude)))
    | _ => .error "expected a number"
  | .double =>
    match c with
    | .float bits => .ok (.f64 bits)
    | .int negative magnitude => .ok (.f64 (UInt64.ofNat (doubleOfInt negative magnitude)))
    | _ => .error "expected a number"
  | type =>
    match c with
    | .int negative magnitude =>
      ofInt type (if negative then -(magnitude.toNat : Int) else magnitude.toNat)
    | _ => .error ("expected an integer of type '" ++ type.name ++ "'")

/-- A constant as a value of an enum. -/
def ofEnum (e : Enum) (c : Decl.Constant) : Except String Default :=
  match c with
  | .ident name =>
    match e.values.findIdx? (·.name == name) with
    | some index => .ok (.enumValue index)
    | none => .error ("'" ++ name ++ "' is not a value of enum '" ++ e.fullName.dotted ++ "'")
  | _ => .error ("expected a value of enum '" ++ e.fullName.dotted ++ "'")

/-- The default of a field, or what is wrong with it. -/
def ofSetting (enums : List Enum) (cardinality : Cardinality) (type : FieldType)
    (c : Decl.Constant) : Except String Default :=
  if cardinality = .repeated then .error "default values are not allowed on repeated fields"
  else
    match type with
    | .message _ => .error "default values are not allowed on message fields"
    | .scalar type =>
      match ofConstant type c with
      | .ok value => .ok (.scalar value)
      | .error reason => .error reason
    | .enum index =>
      match enums[index]? with
      | some e => ofEnum e c
      | none => .error "expected a value of an enum"

end Protobuf.Default
