import Protobuf.Code.MessageType

/-! The text of a generated file. -/
namespace Protobuf

/-- A top-level definition. -/
inductive Item where
  | message (index : Nat)
  | enum (index : Nat)
  deriving DecidableEq, Repr, Inhabited

namespace Item

def name (s : Schema) : Item → String
  | message index => ((s.messages[index]?).map (·.name)).getD ""
  | enum index => ((s.enums[index]?).map (·.name)).getD ""

def code (s : Schema) : Item → List Code
  | message index => MessageType.code s index
  | enum index => MessageType.enumCode s index

end Item

/-- The first line of every generated file. -/
def generatedHeader : String := "// This file is @generated by protogen."

/-- A generated file with these definitions. -/
def sourceText (s : Schema) (items : List Item) : String :=
  Code.render (Code.spaced ([.line generatedHeader] :: items.map (·.code s)))

end Protobuf
