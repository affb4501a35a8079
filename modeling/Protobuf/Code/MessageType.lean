import Protobuf.Code.EnumType
import Protobuf.Code.Literal
import Protobuf.Code.ModulePath

/-! Code for messages: the struct, its accessors, and how it is encoded and decoded.

Fields are written to the wire in the order of their numbers, and everything else follows the order
of declaration. -/
namespace Protobuf.MessageType
open Code EnumType

/-! ### Names that generated code refers to -/

/-- The library that generated code runs on. -/
def library : String := "::protogen_wire"

def defaultFunction : String := "::core::default::Default::default"

/-- A function of the codec of a field. -/
def codecFunction (codec function : String) : String :=
  library ++ "::encoding::" ++ codec ++ "::" ++ function

/-! ### Fields -/

/-- A field and the names it has in code. -/
structure FieldCode where
  field : Field
  ident : String
  /-- The type of one value. -/
  type : String
  /-- The codec of one value. -/
  codec : String
  /-- The path of the enum that the field holds. -/
  enumPath : Option String

namespace FieldCode

def ofField (s : Schema) (home : ModulePath) (f : Field) : FieldCode :=
  let ident := Ident.field f.name
  match f.type with
  | .scalar type => ⟨f, ident, Literal.typeName type, type.name, none⟩
  | .enum index => ⟨f, ident, "i32", "enumeration", some (ModulePath.toEnum s home index)⟩
  | .message index =>
    let path := ModulePath.toMessage s home index
    ⟨f, ident, if f.boxed then "::std::boxed::Box<" ++ path ++ ">" else path, "message", none⟩

/-- The type of the struct's field. -/
def storage (f : FieldCode) : String :=
  match f.field.cardinality with
  | .optional | .required => optionType ++ "<" ++ f.type ++ ">"
  | .repeated => "::std::vec::Vec<" ++ f.type ++ ">"
  | .implicit => f.type

def function (f : FieldCode) (name : String) : String :=
  codecFunction f.codec name

def number (f : FieldCode) : String :=
  f.field.number.repr

def isMessage (f : FieldCode) : Bool :=
  match f.field.type with
  | .message _ => true
  | _ => false

/-- When a field with implicit presence is written. -/
def isSet (f : FieldCode) : String :=
  match f.field.type with
  | .scalar .bool => "self." ++ f.ident
  | .scalar .string | .scalar .bytes => "!self." ++ f.ident ++ ".is_empty()"
  | .scalar .float | .scalar .double => "self." ++ f.ident ++ " != 0.0"
  | _ => "self." ++ f.ident ++ " != 0"

end FieldCode

def ifSome (f : FieldCode) (body : List Code) : List Code :=
  block ("if let " ++ optionType ++ "::Some(value) = &self." ++ f.ident) body

/-! ### Accessors -/

/-- A method of the struct. -/
structure Method where
  name : String
  code : List Code

def scalarDefault (f : Field) (type : Scalar) : String :=
  match f.default with
  | some (.scalar value) => Literal.value value
  | _ => Literal.zero type

def scalarGetter (f : FieldCode) (type : Scalar) : Method :=
  let result :=
    match type with
    | .string => "&str"
    | .bytes => "&[u8]"
    | _ => f.type
  let value :=
    match type with
    | .string | .bytes => "self." ++ f.ident ++ ".as_deref()"
    | _ => "self." ++ f.ident
  { name := f.ident
    code :=
      .line ("/// Returns the value of `" ++ f.field.name ++
        "`, or the default value if it is unset.") ::
      block ("pub fn " ++ f.ident ++ "(&self) -> " ++ result)
        [.line (value ++ ".unwrap_or(" ++ scalarDefault f.field type ++ ")")] }

/-- The value that the accessor of an enum field gives if there is no other. -/
def enumDefault? (e : Enum) (f : Field) : Option EnumValue :=
  match f.default with
  | some (.enumValue index) => e.values[index]?
  | _ => e.values.head?

def enumGetter (e : Enum) (path : String) (f : FieldCode) : Method :=
  let fallback :=
    match enumDefault? e f.field with
    | some v => path ++ "::" ++ Ident.variant v.name
    | none => defaultFunction ++ "()"
  let value :=
    if f.field.cardinality = .implicit then path ++ "::from_i32(self." ++ f.ident ++ ")"
    else "self." ++ f.ident ++ ".and_then(" ++ path ++ "::from_i32)"
  { name := f.ident
    code :=
      .line ("/// Returns the value of `" ++ f.field.name ++
        "`, or the default value if it is unset or unknown.") ::
      block ("pub fn " ++ f.ident ++ "(&self) -> " ++ path)
        [.line (value ++ ".unwrap_or(" ++ fallback ++ ")")] }

def enumSetter (path : String) (f : FieldCode) : Method :=
  let value :=
    if f.field.cardinality = .implicit then "value as i32;"
    else optionType ++ "::Some(value as i32);"
  let name := "set_" ++ Ident.snake f.field.name
  { name
    code :=
      .line ("/// Sets `" ++ f.field.name ++ "` to the provided enum value.") ::
      block ("pub fn " ++ name ++ "(&mut self, value: " ++ path ++ ")")
        [.line ("self." ++ f.ident ++ " = " ++ value)] }

/-- The accessors of a field: none if it is repeated, and for scalars only if the field may be
unset. -/
def accessors (s : Schema) (f : FieldCode) : List Method :=
  match f.field.type, f.field.cardinality with
  | .scalar type, .optional | .scalar type, .required => [scalarGetter f type]
  | .enum index, .optional | .enum index, .required | .enum index, .implicit =>
    match s.enums[index]?, f.enumPath with
    | some e, some path => [enumGetter e path f, enumSetter path f]
    | _, _ => []
  | _, _ => []

/-! ### Struct and accessors -/

def declaration (name : String) (fields : List FieldCode) : List Code :=
  .line "#[derive(Clone, PartialEq, Debug, Default)]" ::
  block ("pub struct " ++ name)
    (fields.map fun f => .line ("pub " ++ f.ident ++ ": " ++ f.storage ++ ","))

def methodImpl (s : Schema) (m : Message) (name : String) (fields : List FieldCode) : List Code :=
  block ("impl " ++ name)
    (.line ("pub const FULL_NAME: &'static str = " ++ Escape.quoted m.fullName.dotted ++ ";") ::
     (fields.flatMap (accessors s)).flatMap fun method => .gap :: method.code)

/-! ### Encoding -/

/-- The fields in the order in which they are written. -/
def byNumber (fields : List FieldCode) : List FieldCode :=
  fields.mergeSort fun a b => a.field.number ≤ b.field.number

/-- A call of one of a family of functions with what a field holds, if it holds anything. Each call
stands between `front` and `close`. -/
def fieldCall (family front close : String) (f : FieldCode) : List Code :=
  let call (function value : String) : Code :=
    .line (front ++ f.function function ++ "(" ++ f.number ++ ", " ++ value ++ close)
  let stored := "&self." ++ f.ident
  match f.field.cardinality with
  | .optional | .required => ifSome f [call family "value"]
  | .implicit => block ("if " ++ f.isSet) [call family stored]
  | .repeated => [call (family ++ if f.field.packed then "_packed" else "_repeated") stored]

def encodeField : FieldCode → List Code :=
  fieldCall "encode" "" ", buf);"

def encodeMethod (fields : List FieldCode) : List Code :=
  let buffer := if fields.isEmpty then "_buf" else "buf"
  block ("fn encode_raw<B: " ++ library ++ "::bytes::BufMut>(&self, " ++ buffer ++ ": &mut B)")
    ((byNumber fields).flatMap encodeField)

def lengthField : FieldCode → List Code :=
  fieldCall "encoded_len" "len += " ");"

def lengthMethod (fields : List FieldCode) : List Code :=
  block "fn encoded_len(&self) -> usize"
    (if fields.isEmpty then [.line "0"]
     else .line "let mut len = 0;" :: (byNumber fields).flatMap lengthField ++ [.line "len"])

/-! ### Decoding -/

def mergeArm (f : FieldCode) : Code :=
  let arm (function target : String) : Code :=
    .line (f.number ++ " => " ++ f.function function ++ "(wire_type, " ++ target ++ ", buf, ctx),")
  match f.field.cardinality with
  | .optional | .required =>
    arm "merge" ("self." ++ f.ident ++ ".get_or_insert_with(" ++ defaultFunction ++ ")")
  | .implicit => arm "merge" ("&mut self." ++ f.ident)
  | .repeated => arm "merge_repeated" ("&mut self." ++ f.ident)

def mergeMethod (fields : List FieldCode) : List Code :=
  [.line ("fn merge_field<B: " ++ library ++ "::bytes::Buf>("),
   .indented
    [.line "&mut self,",
     .line "tag: u32,",
     .line ("wire_type: " ++ library ++ "::encoding::WireType,"),
     .line "buf: &mut B,",
     .line ("ctx: " ++ library ++ "::encoding::DecodeContext,")]] ++
  block (") -> ::core::result::Result<(), " ++ library ++ "::DecodeError>")
    (block "match tag"
      (fields.map mergeArm ++
       [.line ("_ => " ++ library ++ "::encoding::skip_field(wire_type, tag, buf, ctx),")]))

/-- The check of one field: first its own presence, then what its messages lack. -/
def checkField (f : FieldCode) : List Code :=
  let presence :=
    if f.field.cardinality = .required then
      block ("if self." ++ f.ident ++ ".is_none()")
        (enclosed
          ("return ::core::result::Result::Err(" ++ library ++
            "::DecodeError::MissingRequiredField \x7b")
          [.line "message: Self::FULL_NAME,",
           .line ("field: " ++ Escape.quoted f.field.name ++ ",")]
          "\x7d);")
    else []
  let inside : List Code := [.line (library ++ "::Message::check_initialized(value)?;")]
  let contents :=
    if !f.isMessage then []
    else if f.field.isRepeated then block ("for value in &self." ++ f.ident) inside
    else ifSome f inside
  presence ++ contents

def checkMethod (fields : List FieldCode) : List Code :=
  block ("fn check_initialized(&self) -> ::core::result::Result<(), " ++ library ++
    "::DecodeError>")
    (fields.flatMap checkField ++ [.line "::core::result::Result::Ok(())"])

def clearMethod : List Code :=
  block "fn clear(&mut self)" [.line ("*self = " ++ defaultFunction ++ "();")]

def wireImpl (name : String) (fields : List FieldCode) : List Code :=
  block ("impl " ++ library ++ "::Message for " ++ name)
    (spaced
      [encodeMethod fields, mergeMethod fields, lengthMethod fields, checkMethod fields,
       clearMethod])

/-! ### Messages and what is nested in them -/

/-- The code of a message without what is nested in it. -/
def ownCode (s : Schema) (m : Message) : List Code :=
  let fields := m.fields.map (FieldCode.ofField s (ModulePath.of s m.file m.parent))
  let name := Ident.escape m.name
  spaced [declaration name fields, methodImpl s m name fields, wireImpl name fields]

def enumCode (s : Schema) (index : Nat) : List Code :=
  match s.enums[index]? with
  | some e => EnumType.code e
  | none => []

/-- The module for what is nested in a message; `code` gives the code of a message. -/
def nestedCode (s : Schema) (code : Nat → List Code) (m : Message) : List Code :=
  if m.messages.isEmpty && m.enums.isEmpty then []
  else
    .gap ::
    .line ("/// Nested message and enum types in `" ++ m.name ++ "`.") ::
    block ("pub mod " ++ Ident.moduleName m.name)
      (spaced (m.messages.map code ++ m.enums.map (enumCode s)))

/-- The code of the message with this number, with at most so many levels of nesting. -/
def codeUpTo (s : Schema) : (depth : Nat) → Nat → List Code
  | 0, _ => []
  | depth + 1, index =>
    match s.messages[index]? with
    | some m => ownCode s m ++ nestedCode s (codeUpTo s depth) m
    | none => []

/-- The code of the message with this number. Nested messages come later in the schema, so the
number of messages bounds the levels of nesting. -/
def code (s : Schema) (index : Nat) : List Code :=
  codeUpTo s s.messages.length index

end Protobuf.MessageType
