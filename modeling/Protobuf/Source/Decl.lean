import Protobuf.Scalar
import Protobuf.Text.Escape
import Protobuf.Number.Notation
import Protobuf.Text.Span

/-! The declarations of a schema file, as written.

Names are not linked and numbers are not checked: the tree records what the text says and where. -/
namespace Protobuf.Decl

/-- The language level that a file declares. -/
inductive Edition where
  | proto2
  | proto3
  deriving DecidableEq, Repr, Inhabited

def Edition.name : Edition → String
  | proto2 => "proto2"
  | proto3 => "proto3"

/-- A single identifier. -/
structure Ident where
  value : String
  span : Span
  deriving DecidableEq, Repr, Inhabited

/-- Identifiers joined by dots. -/
structure Dotted where
  first : Ident
  others : List Ident
  deriving DecidableEq, Repr, Inhabited

namespace Dotted

def parts (d : Dotted) : List Ident :=
  d.first :: d.others

/-- From the first part to the last. -/
def span (d : Dotted) : Span :=
  d.first.span.join (d.others.getLastD d.first).span

/-- The parts without their places. -/
def names (d : Dotted) : List String :=
  d.parts.map (·.value)

def text (d : Dotted) : String :=
  ".".intercalate d.names

end Dotted

/-- A reference to a message or enum. With a leading dot it is meant from the root. -/
structure TypeRef where
  leadingDot : Option Span
  name : Dotted
  deriving DecidableEq, Repr, Inhabited

namespace TypeRef

def text (r : TypeRef) : String :=
  if r.leadingDot.isSome then "." ++ r.name.text else r.name.text

def span (r : TypeRef) : Span :=
  match r.leadingDot with
  | some dot => dot.join r.name.span
  | none => r.name.span

end TypeRef

/-- An integer literal and its sign. -/
structure IntLit where
  negative : Bool
  magnitude : UInt64
  span : Span
  deriving DecidableEq, Repr, Inhabited

namespace IntLit

/-- The number that the literal stands for. -/
def toInt (n : IntLit) : Int :=
  if n.negative then -(n.magnitude.toNat : Int) else n.magnitude.toNat

/-- The number, if it fits in 64 bits with a sign. -/
def toInt64? (n : IntLit) : Option Int :=
  if -0x8000000000000000 ≤ n.toInt ∧ n.toInt < 0x8000000000000000 then some n.toInt else none

/-- The number, if it fits in 32 bits with a sign. -/
def toInt32? (n : IntLit) : Option Int32 :=
  if -0x80000000 ≤ n.toInt ∧ n.toInt < 0x80000000 then some (Int32.ofInt n.toInt) else none

/-- The literal as written, up to its radix. -/
def text (n : IntLit) : String :=
  if n.negative then "-" ++ n.magnitude.toNat.repr else n.magnitude.toNat.repr

end IntLit

structure Package where
  name : Dotted
  span : Span
  deriving DecidableEq, Repr, Inhabited

/-- How an import was marked: not at all, as weak, or as passed on to importers. -/
inductive ImportKind where
  | plain
  | weak
  | passedOn
  deriving DecidableEq, Repr, Inhabited

structure Import where
  kind : ImportKind
  value : String
  valueSpan : Span
  span : Span
  deriving DecidableEq, Repr, Inhabited

/-- The value of an option. A string is bytes, since it may also be meant for a `bytes` field. -/
inductive Constant where
  | string (bytes : Bytes)
  | int (negative : Bool) (magnitude : UInt64)
  | float (bits : UInt64)
  | bool (value : Bool)
  | ident (name : String)
  deriving DecidableEq, Inhabited

def Constant.text : Constant → String
  | string bytes => String.ofList ('"' :: Escape.bytes bytes ++ ['"'])
  | int negative magnitude =>
    if negative then "-" ++ magnitude.toNat.repr else magnitude.toNat.repr
  | float bits => Decimal.display Binary.double bits.toNat
  | bool value => if value then "true" else "false"
  | ident name => name

/-- An option: a statement of its own, or one in brackets. A custom name keeps its parentheses. -/
structure Setting where
  name : String
  nameSpan : Span
  value : Constant
  valueSpan : Span
  deriving DecidableEq, Inhabited

/-- The setting with this name; the last one counts. -/
def lastSetting? (settings : List Setting) (name : String) : Option Setting :=
  settings.reverse.find? (·.name == name)

inductive TypeExpr where
  | scalar (type : Scalar)
  | named (type : TypeRef)
  deriving DecidableEq, Inhabited

namespace TypeExpr

def text : TypeExpr → String
  | scalar type => type.name
  | named type => type.text

def isNamed : TypeExpr → Bool
  | scalar _ => false
  | named _ => true

/-- Whether the type is known to allow packed fields without looking up a name. -/
def isPackable : TypeExpr → Bool
  | scalar type => type.isPackable
  | named _ => false

/-- The word `group` in the place of a type. -/
def isGroup : TypeExpr → Bool
  | named ⟨none, ⟨first, []⟩⟩ => first.value == "group"
  | _ => false

end TypeExpr

inductive FieldLabel where
  | optional
  | required
  | repeated
  deriving DecidableEq, Repr, Inhabited

structure Field where
  label : Option FieldLabel
  type : TypeExpr
  typeSpan : Span
  name : Ident
  number : IntLit
  settings : List Setting
  span : Span
  deriving DecidableEq, Inhabited

namespace Field

def default? (f : Field) : Option Setting :=
  lastSetting? f.settings "default"

def packed? (f : Field) : Option Setting :=
  lastSetting? f.settings "packed"

end Field

/-- Where a reserved range ends: with its first number, with another, or never. -/
inductive RangeEnd where
  | single
  | upTo (last : IntLit)
  | max
  deriving DecidableEq, Repr, Inhabited

structure ReservedRange where
  first : IntLit
  stop : RangeEnd
  deriving DecidableEq, Repr, Inhabited

inductive ReservedItems where
  | ranges (list : List ReservedRange)
  | names (list : List Ident)
  deriving DecidableEq, Repr, Inhabited

structure Reserved where
  items : ReservedItems
  span : Span
  deriving DecidableEq, Repr, Inhabited

structure EnumValue where
  name : Ident
  number : IntLit
  settings : List Setting
  span : Span
  deriving DecidableEq, Inhabited

structure Enum where
  name : Ident
  values : List EnumValue
  reserved : List Reserved
  settings : List Setting
  span : Span
  deriving DecidableEq, Inhabited

/-- Whether several values may share a number. -/
def Enum.allowsAlias (e : Enum) : Bool :=
  match lastSetting? e.settings "allow_alias" with
  | some setting => setting.value == .bool true
  | none => false

structure Message where
  name : Ident
  fields : List Field
  messages : List Message
  enums : List Enum
  reserved : List Reserved
  settings : List Setting
  span : Span
  deriving Inhabited

structure File where
  edition : Edition
  package : Option Package
  imports : List Import
  settings : List Setting
  messages : List Message
  enums : List Enum
  deriving Inhabited

/-- A file that declares nothing. -/
def File.empty (edition : Edition) : File :=
  ⟨edition, none, [], [], [], []⟩

end Protobuf.Decl
