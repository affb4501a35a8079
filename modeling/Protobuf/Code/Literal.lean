import Protobuf.Number.Notation
import Protobuf.Scalar
import Protobuf.Text.Escape

/-! Scalar types and values in generated code. -/
namespace Protobuf.Literal

/-- The type of the values of a scalar type. -/
def typeName : Scalar → String
  | .double => "f64"
  | .float => "f32"
  | .int32 | .sint32 | .sfixed32 => "i32"
  | .int64 | .sint64 | .sfixed64 => "i64"
  | .uint32 | .fixed32 => "u32"
  | .uint64 | .fixed64 => "u64"
  | .bool => "bool"
  | .string => "::std::string::String"
  | .bytes => "::std::vec::Vec<u8>"

/-- A float; what is no finite number has a name. -/
def float (f : Binary.Format) (type : String) (bits : Nat) : String :=
  if f.isNan bits then "::core::" ++ type ++ "::NAN"
  else if bits = f.infinity then "::core::" ++ type ++ "::INFINITY"
  else if bits = f.withSign true f.infinity then "::core::" ++ type ++ "::NEG_INFINITY"
  else Decimal.constant f bits

def value : ScalarValue → String
  | .bool v => if v then "true" else "false"
  | .i32 v => v.toInt.repr
  | .i64 v => v.toInt.repr
  | .u32 v => v.toNat.repr
  | .u64 v => v.toNat.repr
  | .f32 bits => float Binary.single "f32" bits.toNat
  | .f64 bits => float Binary.double "f64" bits.toNat
  | .string v => Escape.quoted v
  | .bytes v => "&b\"" ++ String.ofList (Escape.literal v) ++ "\"[..]"

/-- The value of an unset field without a default. -/
def zero : Scalar → String
  | .bool => "false"
  | .float | .double => "0.0"
  | .string => "\"\""
  | .bytes => "&[]"
  | _ => "0"

end Protobuf.Literal
