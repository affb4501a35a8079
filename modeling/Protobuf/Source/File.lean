import Protobuf.Source.Grammar

/-! Files of schema text. -/
namespace Protobuf

/-- A file that could be read and parsed. -/
structure SourceFile where
  /-- The name under which other files import it. -/
  name : String
  /-- Where it lies on disk, if it does. -/
  path : Option String
  text : String
  decl : Decl.File
  deriving Inhabited

namespace SourceFile

/-- Parses the text of a file. -/
def ofText (name : String) (path : Option String) (text : String) :
    Except SourceError SourceFile :=
  match Grammar.parse name text with
  | .ok decl => .ok ⟨name, path, text, decl⟩
  | .error e => .error e

def package (f : SourceFile) : Option (List String) :=
  f.decl.package.map (·.name.names)

/-- The names of the imported files, in order. -/
def imports (f : SourceFile) : List String :=
  f.decl.imports.map (·.value)

end SourceFile

/-- A file that takes part in a compilation. -/
structure LoadedFile where
  source : SourceFile
  /-- Whether it was asked for, and not only imported. -/
  isRoot : Bool
  deriving Inhabited

end Protobuf
