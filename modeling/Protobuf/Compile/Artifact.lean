import Protobuf.Code.SourceText
import Protobuf.Compile.Error
import Protobuf.Compile.Settings

/-! Generated files and their names.

In the flat layout there is a file for each package, and one for each file without a package. In the
other layout each top-level type has a file of its own, in a directory for each part of its package.
No two generated files may have the same path. -/
namespace Protobuf

structure Artifact where
  path : String
  /-- The namespace of the package, empty if there is none. -/
  nameSpace : String
  content : String
  deriving DecidableEq, Repr, Inhabited

namespace Artifact

/-- The definitions that go into one artifact. -/
structure Plan where
  /-- The first file that they come from. -/
  file : String
  package : Option QualifiedName
  /-- The name of the artifact, in the flat layout. -/
  name : String
  path : String
  nameSpace : String
  items : List Item
  deriving DecidableEq, Repr, Inhabited

/-- The top-level definitions of a file: messages, then enums. -/
def items (f : SchemaFile) : List Item :=
  f.messages.map .message ++ f.enums.map .enum

def fileNamespace (c : Settings) (f : SchemaFile) : String :=
  match f.package with
  | some package => namespaceOf package.dotted c.namespaceSeparator
  | none => ""

/-- The files to generate: those asked for, or all. -/
def selected (s : Schema) (c : Settings) : List SchemaFile :=
  s.files.filter fun f => f.isRoot || c.includeImports

def fileNamed (c : Settings) (name : String) : String :=
  c.fileNameStart ++ name ++ ".rs"

/-! ### The flat layout -/

/-- A name with its slashes, of either kind, replaced. -/
def withoutSlashes (name : String) : String :=
  String.ofList (name.toList.map fun c => if c = '/' ∨ c = '\\' then '_' else c)

def flatName (c : Settings) (f : SchemaFile) : String :=
  match f.package with
  | some _ => withoutSlashes (fileNamespace c f)
  | none => Ident.pascal (Path.fileStem f.name)

/-- Whether the definitions of a file go into an artifact that is planned already. -/
def Plan.takes (p : Plan) (package : Option QualifiedName) (name : String) : Bool :=
  package.isSome && p.package == package && p.name == name

/-- Adds a file to the plans. -/
def addFlat (c : Settings) (plans : List Plan) (f : SchemaFile) : List Plan :=
  let name := flatName c f
  match plans.findIdx? (·.takes f.package name) with
  | some index => plans.modify index fun p => { p with items := p.items ++ items f }
  | none =>
    plans ++ [⟨f.name, f.package, name, fileNamed c name, fileNamespace c f, items f⟩]

def flat (c : Settings) (files : List SchemaFile) : List Plan :=
  files.foldl (addFlat c) []

/-! ### A file for each type -/

/-- The directory for a package. -/
def packageDirectory (package : Option QualifiedName) : String :=
  (package.getD []).foldl (fun directory part => Path.join directory (namespaceOf part "")) ""

def filePerType (s : Schema) (c : Settings) (files : List SchemaFile) : List Plan :=
  files.flatMap fun f =>
    (items f).map fun item =>
      let name := item.name s
      ⟨f.name, f.package, name, Path.join (packageDirectory f.package) (fileNamed c name),
        fileNamespace c f, [item]⟩

/-! ### Artifacts -/

def plans (s : Schema) (c : Settings) : List Plan :=
  if c.filePerType then filePerType s c (selected s c) else flat c (selected s c)

/-- The first plan whose path another one has already. -/
def conflict? (before : List Plan) : List Plan → Option CompileError
  | [] => none
  | p :: rest =>
    match before.find? fun q => Path.same q.path p.path with
    | some first => some (.artifactConflict p.path first.file p.file)
    | none => conflict? (before ++ [p]) rest

def ofPlan (s : Schema) (p : Plan) : Artifact :=
  ⟨p.path, p.nameSpace, sourceText s p.items⟩

/-- The generated files of a schema. -/
def build (s : Schema) (c : Settings) : Except CompileError (List Artifact) :=
  match conflict? [] (plans s c) with
  | some e => .error e
  | none => .ok ((plans s c).map (ofPlan s))

end Artifact

end Protobuf
