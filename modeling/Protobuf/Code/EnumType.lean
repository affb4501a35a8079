import Protobuf.Code.Ident
import Protobuf.Code.Layout
import Protobuf.Schema.EnumValues
import Protobuf.Text.Escape

/-! Code for enums: the type, its names, and conversions from and to numbers. -/
namespace Protobuf.EnumType
open Code

/-- The type of optional values. -/
def optionType : String := "::core::option::Option"

def variantIdent (v : EnumValue) : String :=
  Ident.variant v.name

/-- The variant that an alias stands for. -/
def aliasTarget (e : Enum) (v : EnumValue) : String :=
  match e.ofNumber? v.number with
  | some target => variantIdent target
  | none => ""

def declaration (e : Enum) (name : String) : List Code :=
  .line "#[derive(Clone, Copy, Debug, PartialEq, Eq, Hash, PartialOrd, Ord)]" ::
  .line "#[repr(i32)]" ::
  block ("pub enum " ++ name)
    (e.variants.map fun v => .line (variantIdent v ++ " = " ++ v.number.toInt.repr ++ ","))

def constants (e : Enum) (name : String) : List Code :=
  .line ("pub const FULL_NAME: &'static str = " ++ Escape.quoted e.fullName.dotted ++ ";") ::
  e.aliases.flatMap fun v =>
    [.line "#[allow(non_upper_case_globals)]",
     .line ("pub const " ++ variantIdent v ++ ": " ++ name ++ " = " ++ name ++ "::" ++
      aliasTarget e v ++ ";")]

/-- A match with an arm for each value and one for all others. -/
def lookup (values : List EnumValue) (key : EnumValue → String) : List Code :=
  block "match value"
    ((values.map fun v =>
      .line (key v ++ " => " ++ optionType ++ "::Some(Self::" ++ variantIdent v ++ "),")) ++
     [.line ("_ => " ++ optionType ++ "::None,")])

def toName (e : Enum) : List Code :=
  .line "/// Returns the name of this value as it appears in the protobuf definition." ::
  block "pub fn as_str_name(&self) -> &'static str"
    (block "match self"
      (e.variants.map fun v =>
        .line ("Self::" ++ variantIdent v ++ " => " ++ Escape.quoted v.name ++ ",")))

def ofName (e : Enum) : List Code :=
  .line "/// Looks up a value by its name in the protobuf definition, including aliases." ::
  block ("pub fn from_str_name(value: &str) -> " ++ optionType ++ "<Self>")
    (lookup (e.variants ++ e.aliases) fun v => Escape.quoted v.name)

def ofNumber (e : Enum) : List Code :=
  .line "/// Converts a raw integer to a value of this enum, if it is a known value." ::
  block ("pub fn from_i32(value: i32) -> " ++ optionType ++ "<Self>")
    (lookup e.variants fun v => v.number.toInt.repr)

def defaultImpl (e : Enum) (name : String) : List Code :=
  match e.default? with
  | none => []
  | some first =>
    .gap ::
    block ("impl ::core::default::Default for " ++ name)
      (block "fn default() -> Self" [.line ("Self::" ++ variantIdent first)])

def toNumberImpl (name : String) : List Code :=
  block ("impl ::core::convert::From<" ++ name ++ "> for i32")
    (block ("fn from(value: " ++ name ++ ") -> i32") [.line "value as i32"])

def ofNumberImpl (name : String) : List Code :=
  block ("impl ::core::convert::TryFrom<i32> for " ++ name)
    (.line "type Error = i32;" ::
     .gap ::
     block "fn try_from(value: i32) -> ::core::result::Result<Self, i32>"
      [.line "Self::from_i32(value).ok_or(value)"])

def code (e : Enum) : List Code :=
  let name := Ident.escape e.name
  spaced
    [declaration e name,
     block ("impl " ++ name) (spaced [constants e name, toName e, ofName e, ofNumber e]) ++
      defaultImpl e name,
     toNumberImpl name,
     ofNumberImpl name]

end Protobuf.EnumType
