import Protobuf.Source.Decl

/-! Linked schemas.

Messages and enums are numbered and refer to each other by number, so that types may be recursive.
A message is numbered before those nested in it. Full names are the package, the enclosing messages
and the own name; they are kept as lists of parts. -/
namespace Protobuf

/-- A full name, outermost part first. -/
abbrev QualifiedName := List String

def QualifiedName.dotted (name : QualifiedName) : String :=
  ".".intercalate name

/-- How many values a field has, and whether an unset field differs from a zero one: a field with
implicit presence does not keep them apart. -/
inductive Cardinality where
  | optional
  | required
  | repeated
  | implicit
  deriving DecidableEq, Repr, Inhabited

/-- The type of a field; messages and enums are given by their numbers. -/
inductive FieldType where
  | scalar (type : Scalar)
  | message (index : Nat)
  | enum (index : Nat)
  deriving DecidableEq, Repr, Inhabited

/-- The value that an accessor gives for an unset field. An enum value is given by its place. -/
inductive Default where
  | scalar (value : ScalarValue)
  | enumValue (index : Nat)
  deriving DecidableEq

structure Field where
  name : String
  number : Nat
  cardinality : Cardinality
  type : FieldType
  packed : Bool
  default : Option Default
  /-- Whether the value is kept behind a pointer, because the message could contain itself. -/
  boxed : Bool
  deriving DecidableEq

structure Message where
  name : String
  fullName : QualifiedName
  file : Nat
  parent : Option Nat
  fields : List Field
  messages : List Nat
  enums : List Nat
  deriving DecidableEq

structure EnumValue where
  name : String
  number : Int32
  deriving DecidableEq, Repr, Inhabited

structure Enum where
  name : String
  fullName : QualifiedName
  file : Nat
  parent : Option Nat
  values : List EnumValue
  deriving DecidableEq, Repr, Inhabited

structure SchemaFile where
  name : String
  package : Option QualifiedName
  edition : Decl.Edition
  messages : List Nat
  enums : List Nat
  /-- Whether the file was asked for, and not only imported. -/
  isRoot : Bool
  deriving DecidableEq, Repr, Inhabited

structure Schema where
  files : List SchemaFile
  messages : List Message
  enums : List Enum
  deriving DecidableEq

namespace Field

def isRepeated (f : Field) : Bool :=
  f.cardinality == .repeated

/-- The message that a field with one value holds. -/
def singularMessage? (f : Field) : Option Nat :=
  match f.type with
  | .message index => if f.isRepeated then none else some index
  | _ => none

end Field

def Message.field? (m : Message) (name : String) : Option Field :=
  m.fields.find? (·.name == name)

namespace Schema

def message? (s : Schema) (fullName : String) : Option Message :=
  s.messages.find? (·.fullName.dotted == fullName)

def enum? (s : Schema) (fullName : String) : Option Enum :=
  s.enums.find? (·.fullName.dotted == fullName)

/-- The names of the messages around a definition, outermost first; `bound` limits their number. -/
def enclosingUpTo (s : Schema) : (bound : Nat) → Option Nat → List String
  | 0, _ => []
  | _, none => []
  | bound + 1, some index =>
    match s.messages[index]? with
    | some m => s.enclosingUpTo bound m.parent ++ [m.name]
    | none => []

/-- The names of the messages around a definition. A message comes after its parent, so their
number is bounded. -/
def enclosing (s : Schema) (parent : Option Nat) : List String :=
  s.enclosingUpTo s.messages.length parent

end Schema

end Protobuf
