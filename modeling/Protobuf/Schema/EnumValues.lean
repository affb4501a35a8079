import Protobuf.Schema.Basic

/-! Variants and aliases of an enum.

The first value of each number is a variant, and later ones are aliases of it. Numbers and names are
converted to variants. -/
namespace Protobuf.Enum

/-- The values that are the first with their number, of values that follow others with the given
numbers. -/
def firstsAfter (seen : List Int32) : List EnumValue → List EnumValue
  | [] => []
  | v :: rest =>
    if v.number ∈ seen then firstsAfter seen rest else v :: firstsAfter (v.number :: seen) rest

/-- The values that have the number of an earlier one, of values that follow others with the given
numbers. -/
def repeatsAfter (seen : List Int32) : List EnumValue → List EnumValue
  | [] => []
  | v :: rest =>
    if v.number ∈ seen then v :: repeatsAfter seen rest else repeatsAfter (v.number :: seen) rest

def variants (e : Enum) : List EnumValue :=
  firstsAfter [] e.values

def aliases (e : Enum) : List EnumValue :=
  repeatsAfter [] e.values

/-- The variant with this number. -/
def ofNumber? (e : Enum) (number : Int32) : Option EnumValue :=
  e.variants.find? (·.number == number)

/-- The variant that a name stands for, be it its own name or that of an alias. -/
def ofName? (e : Enum) (name : String) : Option EnumValue :=
  match (e.variants ++ e.aliases).find? (·.name == name) with
  | some v => e.ofNumber? v.number
  | none => none

/-- The value of an enum field that nothing was read into. -/
def default? (e : Enum) : Option EnumValue :=
  e.variants.head?

end Protobuf.Enum
