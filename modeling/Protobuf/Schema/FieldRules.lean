import Protobuf.Code.Ident
import Protobuf.Schema.Basic
import Protobuf.Schema.Flaw
import Protobuf.Schema.Reserved

/-! The rules for the names and numbers of the fields of a message.

Names differ, also in generated code, and so do numbers. A number lies in the range of field numbers
but not in the part of it that implementations keep for themselves. Reserved numbers and names are
not used. -/
namespace Protobuf.FieldRules

/-- The largest field number. -/
def maxNumber : Nat := Key.maxNumber

/-- The number of a field, if fields may have it. -/
def number? (n : Decl.IntLit) : Option Nat :=
  let number := n.magnitude.toNat
  if n.negative ∨ number < 1 ∨ maxNumber < number ∨ (19000 ≤ number ∧ number < 20000) then none
  else some number

/-- What is wrong with the name of a field, given the fields in front of it. -/
def nameFlaws (message : String) (before : List Decl.Field) (f : Decl.Field) : List Flaw :=
  let ident := Ident.field f.name.value
  match before.find? (Ident.field ·.name.value == ident) with
  | none => []
  | some first =>
    if first.name.value = f.name.value then
      [.duplicateFieldName message f.name.value first.name.span f.name.span]
    else
      [.conflictingIdent "field" message ident first.name.value f.name.value first.name.span
        f.name.span]

/-- What is wrong with the number of a field, given the fields in front of it. -/
def numberFlaws (message : String) (reserved : ReservedSet) (before : List Decl.Field)
    (f : Decl.Field) : List Flaw :=
  match number? f.number with
  | none => [.invalidFieldNumber f.name.value f.number.text f.number.span]
  | some number =>
    let duplicate :=
      match before.find? (number? ·.number == some number) with
      | some first =>
        [.duplicateFieldNumber message number first.name.value f.name.value first.number.span
          f.number.span]
      | none => []
    let reservedNumber :=
      match reserved.number? number with
      | some span => [.reservedFieldNumber f.name.value number f.number.span span]
      | none => []
    duplicate ++ reservedNumber

def reservedNameFlaws (message : String) (reserved : ReservedSet) (f : Decl.Field) : List Flaw :=
  match reserved.name? f.name.value with
  | some span => [.reservedFieldName message f.name.value f.name.span span]
  | none => []

/-- The flaws of fields that follow others. -/
def fieldsFlaws (message : String) (reserved : ReservedSet) (before : List Decl.Field) :
    List Decl.Field → List Flaw
  | [] => []
  | f :: rest =>
    nameFlaws message before f ++ reservedNameFlaws message reserved f ++
      numberFlaws message reserved before f ++
      fieldsFlaws message reserved (before ++ [f]) rest

/-- The flaws of the names and numbers of a message with this full name. -/
def flaws (message : String) (m : Decl.Message) : List Flaw :=
  fieldsFlaws message (.ofStatements maxNumber m.reserved) [] m.fields

end Protobuf.FieldRules
