import Protobuf.Compile.FileSource

/-! Loading files and what they import.

The list of loaded files grows at its end, and a file is added only after all its imports, so each
file comes after those it needs. An index tells where the file with a given name is. Imports that
were loaded before a failure stay loaded. -/
namespace Protobuf

/-- The loaded files in order, and their places by the names they were loaded under. -/
structure Loaded where
  files : List LoadedFile
  index : List (String × Nat)
  deriving Inhabited

namespace Loaded

def empty : Loaded :=
  ⟨[], []⟩

/-- The place of the file that was loaded under this name. -/
def indexOf? (l : Loaded) (name : String) : Option Nat :=
  l.index.lookup name

def has (l : Loaded) (name : String) : Bool :=
  (l.indexOf? name).isSome

/-- Adds a file at the end. -/
def insert (l : Loaded) (name : String) (f : LoadedFile) : Loaded :=
  ⟨l.files ++ [f], (name, l.files.length) :: l.index⟩

/-- Marks the file at a place as one that was asked for. -/
def markRoot (l : Loaded) (place : Nat) : Loaded :=
  { l with files := l.files.modify place fun f => { f with isRoot := true } }

end Loaded

namespace Loading

/-- The files after a step, and the error if it failed. -/
structure Outcome where
  loaded : Loaded
  error : Option CompileError

/-! ### Imports -/

/-- Says which import statement asked for a file that was not found. -/
def atImport (f : SourceFile) (i : Decl.Import) (e : CompileError) : CompileError :=
  match e with
  | .fileNotFound name =>
    .importNotFound name f.name (Position.locate f.text i.valueSpan.start) i.valueSpan
  | e => e

/-- Loads the files of import statements in order, each by `load`, up to the first failure. -/
def importEach (load : String → Loaded → Outcome) (f : SourceFile) (l : Loaded) :
    List Decl.Import → Outcome
  | [] => ⟨l, none⟩
  | i :: rest =>
    match load i.value l with
    | ⟨l', some e⟩ => ⟨l', some (atImport f i e)⟩
    | ⟨l', none⟩ => importEach load f l' rest

/-- Loads an imported file and what it imports, unless it is loaded already. `chain` leads to it
from the file that was asked for, and `depth` bounds how much longer it may get. -/
def importFile (s : FileSource) : (depth : Nat) → (chain : List String) → String → Loaded → Outcome
  | 0, chain, name, l => ⟨l, some (.endlessImport (chain ++ [name]))⟩
  | depth + 1, chain, name, l =>
    if name ∈ chain then ⟨l, some (.circularImport (chain ++ [name]))⟩
    else if l.has name then ⟨l, none⟩
    else
      match s.load name with
      | .error e => ⟨l, some e⟩
      | .ok f =>
        match importEach (importFile s depth (chain ++ [name])) f l f.decl.imports with
        | ⟨l', some e⟩ => ⟨l', some e⟩
        | ⟨l', none⟩ => ⟨l'.insert name ⟨f, false⟩, none⟩

/-! ### Files that are asked for -/

/-- A path must lead to the file that was opened under its name. -/
def checkShadow (f : SourceFile) (name path : String) : Option CompileError :=
  match f.path with
  | some actual =>
    if Path.equivalent actual path then none else some (.fileShadowed name path actual)
  | none => none

/-- The name of the file at a path, and whether the source itself knows it. -/
def nameFor (s : FileSource) (path : String) : Option (String × Bool) :=
  match s.nameOf path with
  | some name => some (name, true)
  | none => (Path.nameOf? (Path.components path)).map fun name => (name, false)

/-- Loads the file with this name, which is not loaded yet, and its imports. -/
def addNew (s : FileSource) (l : Loaded) (path name : String) (known : Bool) : Outcome :=
  match s.load name with
  | .error e => ⟨l, some (if e.isNotFound then .fileNotIncluded path else e)⟩
  | .ok f =>
    match if known then checkShadow f name path else none with
    | some e => ⟨l, some e⟩
    | none =>
      match importEach (importFile s (s.extent + 1) [name]) f l f.decl.imports with
      | ⟨l', some e⟩ => ⟨l', some e⟩
      | ⟨l', none⟩ => ⟨l'.insert name ⟨f, true⟩, none⟩

/-- Loads the file at a path as one that is asked for. -/
def addFile (s : FileSource) (l : Loaded) (path : String) : Outcome :=
  match nameFor s path with
  | none => ⟨l, some (.fileNotIncluded path)⟩
  | some (name, known) =>
    match l.indexOf? name with
    | none => addNew s l path name known
    | some place =>
      match l.files[place]? with
      | none => ⟨l, none⟩
      | some f =>
        match if known then checkShadow f.source name path else none with
        | some e => ⟨l, some e⟩
        | none => ⟨l.markRoot place, none⟩

/-- Loads the files at several paths, up to the first failure. -/
def addFiles (s : FileSource) (l : Loaded) : List String → Outcome
  | [] => ⟨l, none⟩
  | path :: rest =>
    match addFile s l path with
    | ⟨l', some e⟩ => ⟨l', some e⟩
    | ⟨l', none⟩ => addFiles s l' rest

end Loading

end Protobuf
