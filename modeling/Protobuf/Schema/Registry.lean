import Protobuf.Schema.Flaw
import Protobuf.Schema.Outline

/-! The names of a set of files, and how a type name is looked up among them.

Names are entered in the order of the outline. A name may be entered again only if it is a package
both times. -/
namespace Protobuf

/-- Names that do not clash. -/
abbrev Registry := List NameEntry

namespace Registry

def get? (r : Registry) (name : QualifiedName) : Option NameEntry :=
  r.find? (·.name == name)

/-! ### Entering names -/

/-- What is wrong with entering `entry` when `first` has its name. -/
def clash (fileName : Nat → String) (first entry : NameEntry) : Option Flaw :=
  if first.definition = .package ∧ entry.definition = .package then none
  else if first.file = entry.file then
    some (.duplicateName entry.name.dotted first.span entry.span)
  else some (.duplicateNameInImport entry.name.dotted (fileName first.file) entry.span)

/-- Enters names one after the other. A name that is there already stays as it was. -/
def enter (fileName : Nat → String) (r : Registry) : List NameEntry → Registry × List (Nat × Flaw)
  | [] => (r, [])
  | entry :: rest =>
    match r.get? entry.name with
    | none => enter fileName (r ++ [entry]) rest
    | some first =>
      let (r', flaws) := enter fileName r rest
      match clash fileName first entry with
      | some flaw => (r', (entry.file, flaw) :: flaws)
      | none => (r', flaws)

/-! ### Looking names up -/

/-- The scopes around a place in `scope`, innermost first and the root last. -/
def scopes (scope : QualifiedName) : List QualifiedName :=
  (List.range (scope.length + 1)).reverse.map scope.take

/-- Looks a name up in each scope. Its first part decides in which scope the rest is looked for,
except that a package which lacks the rest is passed over. -/
def findIn (r : Registry) (first : String) (rest : List String) :
    List QualifiedName → Option NameEntry
  | [] => none
  | scope :: outer =>
    match r.get? (scope ++ [first]) with
    | none => r.findIn first rest outer
    | some entry =>
      match r.get? (scope ++ first :: rest) with
      | some found => some found
      | none => if entry.definition = .package then r.findIn first rest outer else none

/-- Looks up a type name that is used inside `scope`. -/
def resolve (r : Registry) (scope : QualifiedName) (type : Decl.TypeRef) : Option NameEntry :=
  if type.leadingDot.isSome then r.get? type.name.names
  else r.findIn type.name.first.value (type.name.others.map (·.value)) (scopes scope)

end Registry

end Protobuf
