import Protobuf.Code.Ident
import Protobuf.Schema.Basic

/-! Where generated types live, and how they refer to each other.

The types of a package are in a module for each part of it, and what is nested in a message is in a
module next to the message. References are relative: up to the common module, then down. -/
namespace Protobuf

/-- The modules around a definition, outermost first. -/
abbrev ModulePath := List String

namespace ModulePath

/-- The module of the definitions of a file inside `parent`. -/
def of (s : Schema) (file : Nat) (parent : Option Nat) : ModulePath :=
  let package :=
    match s.files[file]? with
    | some f => f.package.getD []
    | none => []
  (package ++ s.enclosing parent).map Ident.moduleName

/-- The number of modules that two paths share. -/
def common : ModulePath → ModulePath → Nat
  | a :: as, b :: bs => if a = b then common as bs + 1 else 0
  | _, _ => 0

/-- The steps from one module to another. -/
def steps (source target : ModulePath) : List String :=
  let shared := common source target
  List.replicate (source.length - shared) "super" ++ target.drop shared

/-- A path to an item of `target`, as it is written in `source`. -/
def relative (source target : ModulePath) (item : String) : String :=
  "::".intercalate (steps source target ++ [item])

/-- The path of a message. -/
def toMessage (s : Schema) (source : ModulePath) (index : Nat) : String :=
  match s.messages[index]? with
  | some m => relative source (of s m.file m.parent) (Ident.escape m.name)
  | none => ""

/-- The path of an enum. -/
def toEnum (s : Schema) (source : ModulePath) (index : Nat) : String :=
  match s.enums[index]? with
  | some e => relative source (of s e.file e.parent) (Ident.escape e.name)
  | none => ""

end ModulePath

/-- The namespace of a package: its parts with capitals, joined by a separator. -/
def namespaceOf (package separator : String) : String :=
  let parts := (Split.pieces (· == '.') package.toList).filter (!·.isEmpty)
  separator.intercalate (parts.map fun part => Ident.capitalize (String.ofList part))

end Protobuf
