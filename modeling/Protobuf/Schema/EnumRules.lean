import Protobuf.Code.Ident
import Protobuf.Schema.Basic
import Protobuf.Schema.Flaw
import Protobuf.Schema.Reserved

/-! The rules for enums.

An enum has at least one value, and its values fit in 32 bits, differ in the names that they get in
generated code, and differ in number unless aliases are allowed. Reserved numbers and names are not
used. In a `proto3` file the first number is zero. -/
namespace Protobuf.EnumRules
open Decl (Edition)

/-- The flaws of a value, given the values in front of it. -/
def valueFlaws (e : Decl.Enum) (reserved : ReservedSet) (before : List Decl.EnumValue)
    (v : Decl.EnumValue) : List Flaw :=
  let ident := Ident.variant v.name.value
  let identFlaws :=
    match before.find? (Ident.variant ·.name.value == ident) with
    | some first =>
      [.conflictingIdent "enum value" e.name.value ident first.name.value v.name.value
        first.name.span v.name.span]
    | none => []
  match v.number.toInt32? with
  | none => identFlaws ++ [.enumValueOutOfRange v.name.value v.number.span]
  | some number =>
    let numberFlaws :=
      match before.find? (·.number.toInt32? == some number) with
      | some first =>
        if e.allowsAlias then []
        else
          [.duplicateEnumValue e.name.value number.toInt first.name.value v.name.value
            first.number.span v.number.span]
      | none => []
    let reservedNumber :=
      match reserved.number? number.toInt with
      | some span => [.reservedEnumValue e.name.value v.name.value "number" v.number.span span]
      | none => []
    let reservedName :=
      match reserved.name? v.name.value with
      | some span => [.reservedEnumValue e.name.value v.name.value "name" v.name.span span]
      | none => []
    identFlaws ++ numberFlaws ++ reservedNumber ++ reservedName

/-- The flaws of values that follow others. -/
def valuesFlaws (e : Decl.Enum) (reserved : ReservedSet) (before : List Decl.EnumValue) :
    List Decl.EnumValue → List Flaw
  | [] => []
  | v :: rest => valueFlaws e reserved before v ++ valuesFlaws e reserved (before ++ [v]) rest

/-- A `proto3` enum starts with zero. -/
def firstValueFlaws (edition : Edition) (e : Decl.Enum) : List Flaw :=
  match edition, e.values.head? with
  | .proto3, some first =>
    if first.number.toInt32? = some 0 then []
    else [.nonzeroFirstValue e.name.value first.number.span]
  | _, _ => []

/-- The largest number that an enum may reserve. -/
def maxNumber : Int := 0x7FFFFFFF

def flaws (edition : Edition) (e : Decl.Enum) : List Flaw :=
  if e.values.isEmpty then [.emptyEnum e.name.value e.name.span]
  else
    valuesFlaws e (.ofStatements maxNumber e.reserved) [] e.values ++ firstValueFlaws edition e

/-- The values whose numbers fit in 32 bits. -/
def values (e : Decl.Enum) : List EnumValue :=
  e.values.filterMap fun v => v.number.toInt32?.map fun number => ⟨v.name.value, number⟩

end Protobuf.EnumRules
