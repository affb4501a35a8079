import Protobuf.Number.Binary
import Protobuf.Wire.Codec

/-! The scalar types and their values.

A value keeps the machine type that its field has: floats are held as bits. Several scalar types
share one machine type and differ only in how they are written. `Scalar.codec` gives the layout of
each over the common type of values. -/
namespace Protobuf

inductive Scalar where
  | double
  | float
  | int32
  | int64
  | uint32
  | uint64
  | sint32
  | sint64
  | fixed32
  | fixed64
  | sfixed32
  | sfixed64
  | bool
  | string
  | bytes
  deriving DecidableEq, Repr, Inhabited

/-- A value of some scalar type. -/
inductive ScalarValue where
  | bool (value : Bool)
  | i32 (value : Int32)
  | i64 (value : Int64)
  | u32 (value : UInt32)
  | u64 (value : UInt64)
  | f32 (bits : UInt32)
  | f64 (bits : UInt64)
  | string (value : String)
  | bytes (value : Bytes)
  deriving DecidableEq

namespace ScalarValue

/-! ### The value of one machine type, or its zero -/

def toBool : ScalarValue → Bool
  | bool v => v
  | _ => false

def toInt32 : ScalarValue → Int32
  | i32 v => v
  | _ => 0

def toInt64 : ScalarValue → Int64
  | i64 v => v
  | _ => 0

def toUInt32 : ScalarValue → UInt32
  | u32 v => v
  | _ => 0

def toUInt64 : ScalarValue → UInt64
  | u64 v => v
  | _ => 0

def toBits32 : ScalarValue → UInt32
  | f32 v => v
  | _ => 0

def toBits64 : ScalarValue → UInt64
  | f64 v => v
  | _ => 0

def toText : ScalarValue → String
  | string v => v
  | _ => ""

def toBytes : ScalarValue → Bytes
  | bytes v => v
  | _ => []

/-- Whether a value is zero or empty. Both float zeros are. -/
def isZero : ScalarValue → Bool
  | bool v => !v
  | i32 v => v == 0
  | i64 v => v == 0
  | u32 v => v == 0
  | u64 v => v == 0
  | f32 v => Binary.single.isZero v.toNat
  | f64 v => Binary.double.isZero v.toNat
  | string v => v.isEmpty
  | bytes v => v.isEmpty

/-- Equality of values, floats compared as numbers. -/
def sameValue : ScalarValue → ScalarValue → Bool
  | f32 a, f32 b => Binary.single.numEq a.toNat b.toNat
  | f64 a, f64 b => Binary.double.numEq a.toNat b.toNat
  | a, b => a == b

end ScalarValue

namespace Scalar

def name : Scalar → String
  | double => "double"
  | float => "float"
  | int32 => "int32"
  | int64 => "int64"
  | uint32 => "uint32"
  | uint64 => "uint64"
  | sint32 => "sint32"
  | sint64 => "sint64"
  | fixed32 => "fixed32"
  | fixed64 => "fixed64"
  | sfixed32 => "sfixed32"
  | sfixed64 => "sfixed64"
  | bool => "bool"
  | string => "string"
  | bytes => "bytes"

/-- Every scalar type. -/
def all : List Scalar :=
  [double, float, int32, int64, uint32, uint64, sint32, sint64, fixed32, fixed64, sfixed32,
   sfixed64, bool, string, bytes]

/-- The scalar type with this name. -/
def ofName? (text : String) : Option Scalar :=
  all.find? (·.name == text)

theorem ofName?_name (s : Scalar) : ofName? s.name = some s := by
  cases s <;> rfl

/-- Whether repeated fields of this type may be packed. -/
def isPackable : Scalar → Bool
  | string | bytes => false
  | _ => true

/-- How values of this type are laid out. -/
def codec : Scalar → Codec ScalarValue
  | double => Codec.fixed64.lift .f64 ScalarValue.toBits64
  | float => Codec.fixed32.lift .f32 ScalarValue.toBits32
  | int32 => Codec.int32.lift .i32 ScalarValue.toInt32
  | int64 => Codec.int64.lift .i64 ScalarValue.toInt64
  | uint32 => Codec.uint32.lift .u32 ScalarValue.toUInt32
  | uint64 => Codec.uint64.lift .u64 ScalarValue.toUInt64
  | sint32 => Codec.sint32.lift .i32 ScalarValue.toInt32
  | sint64 => Codec.sint64.lift .i64 ScalarValue.toInt64
  | fixed32 => Codec.fixed32.lift .u32 ScalarValue.toUInt32
  | fixed64 => Codec.fixed64.lift .u64 ScalarValue.toUInt64
  | sfixed32 => Codec.sfixed32.lift .i32 ScalarValue.toInt32
  | sfixed64 => Codec.sfixed64.lift .i64 ScalarValue.toInt64
  | bool => Codec.bool.lift .bool ScalarValue.toBool
  | string => Codec.string.lift .string ScalarValue.toText
  | bytes => Codec.bytes.lift .bytes ScalarValue.toBytes

/-- The zero or empty value. -/
def zero (s : Scalar) : ScalarValue :=
  s.codec.zero

/-- Whether a value is of this type. -/
def Holds : Scalar → ScalarValue → Prop
  | double, .f64 _ | float, .f32 _ => True
  | int32, .i32 _ | sint32, .i32 _ | sfixed32, .i32 _ => True
  | int64, .i64 _ | sint64, .i64 _ | sfixed64, .i64 _ => True
  | uint32, .u32 _ | fixed32, .u32 _ => True
  | uint64, .u64 _ | fixed64, .u64 _ => True
  | bool, .bool _ => True
  | string, .string _ => True
  | bytes, .bytes _ => True
  | _, _ => False

theorem isPackable_codec (s : Scalar) : s.codec.isPackable = s.isPackable := by
  cases s <;> rfl

end Scalar

end Protobuf
