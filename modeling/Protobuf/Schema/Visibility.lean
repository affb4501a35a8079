import Protobuf.Source.File

/-! Which files a file may refer to: itself, the files it imports, and what those pass on. -/
namespace Protobuf.Visibility

/-- The number of the file with this name: of several, that of the last. -/
def indexOf? (files : List LoadedFile) (name : String) : Option Nat :=
  (files.map (·.source.name)).zipIdx.reverse.lookup name

/-- The files that these imports bring in, each once, given what each earlier file passes on. -/
def reached (files : List LoadedFile) (passedOn : List (List Nat)) (imports : List String) :
    List Nat :=
  (imports.flatMap fun name =>
    match indexOf? files name with
    | some index => passedOn.getD index []
    | none => []).eraseDups

/-- The imports of a file that it passes on. -/
def passedOnImports (f : SourceFile) : List String :=
  (f.decl.imports.filter (·.kind == .passedOn)).map (·.value)

/-- Extends the list of what each file passes on to its importers, itself included. Files follow
their imports, so what an import passes on is known already. -/
def passedOnFrom (files : List LoadedFile) (known : List (List Nat)) :
    List LoadedFile → List (List Nat)
  | [] => known
  | f :: rest =>
    passedOnFrom files
      (known ++ [known.length :: reached files known (passedOnImports f.source)]) rest

def passedOn (files : List LoadedFile) : List (List Nat) :=
  passedOnFrom files [] files

/-- For each file, the files that it may refer to. -/
def table (files : List LoadedFile) : List (List Nat) :=
  let known := passedOn files
  files.mapIdx fun index f => index :: reached files known f.source.imports

/-- The files that the file with this number may refer to. -/
def visible (files : List LoadedFile) (index : Nat) : List Nat :=
  (table files).getD index []

end Protobuf.Visibility
