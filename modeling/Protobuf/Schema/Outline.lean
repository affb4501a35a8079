import Protobuf.Schema.Basic
import Protobuf.Source.File

/-! The outline of a set of files: which definitions there are, their numbers and their names.

The definitions of all files are numbered in one walk through the declarations. A message comes
before the messages nested in it, and those before its next sibling. The enums in nested messages
come before the message's own enums, and the enums of a file after those in its messages. -/
namespace Protobuf

/-- What a name stands for. -/
inductive Definition where
  | package
  | message (index : Nat)
  | enum (index : Nat)
  | enumValue
  deriving DecidableEq, Repr, Inhabited

/-- A full name, what it stands for and where it is declared. -/
structure NameEntry where
  name : QualifiedName
  definition : Definition
  file : Nat
  span : Span
  deriving DecidableEq, Repr, Inhabited

/-- A message that has a number but no linked fields yet. -/
structure MessageOutline where
  decl : Decl.Message
  fullName : QualifiedName
  file : Nat
  parent : Option Nat
  messages : List Nat
  enums : List Nat
  deriving Inhabited

/-- An enum that has a number but whose values are not checked yet. -/
structure EnumOutline where
  decl : Decl.Enum
  fullName : QualifiedName
  file : Nat
  parent : Option Nat
  deriving Inhabited

/-- Names and definitions, in the order of the walk. -/
structure Outline where
  names : List NameEntry
  messages : List MessageOutline
  enums : List EnumOutline
  deriving Inhabited

namespace Outline

def empty : Outline := ⟨[], [], []⟩

def append (a b : Outline) : Outline :=
  ⟨a.names ++ b.names, a.messages ++ b.messages, a.enums ++ b.enums⟩

instance : Append Outline := ⟨append⟩

/-! ### Counting -/

mutual

/-- The number of messages in a declaration, itself included. -/
def messageCount : Decl.Message → Nat
  | ⟨_, _, messages, _, _, _, _⟩ => messagesCount messages + 1

def messagesCount : List Decl.Message → Nat
  | [] => 0
  | m :: rest => messageCount m + messagesCount rest

end

mutual

/-- The number of enums in a message. -/
def enumCount : Decl.Message → Nat
  | ⟨_, _, messages, enums, _, _, _⟩ => enumsCount messages + enums.length

def enumsCount : List Decl.Message → Nat
  | [] => 0
  | m :: rest => enumCount m + enumsCount rest

end

/-- The numbers of sibling messages, of which the first has number `next`. -/
def messageIndices (next : Nat) : List Decl.Message → List Nat
  | [] => []
  | m :: rest => next :: messageIndices (next + messageCount m) rest

/-- The numbers of sibling enums, of which the first has number `next`. -/
def enumIndices (next : Nat) (enums : List Decl.Enum) : List Nat :=
  List.range' next enums.length

/-! ### The walk -/

/-- Where a declaration stands. -/
structure Site where
  file : Nat
  scope : QualifiedName
  parent : Option Nat

/-- The names that an enum adds: its own, and those of its values, which are its siblings. -/
def enumNames (site : Site) (index : Nat) (e : Decl.Enum) : List NameEntry :=
  ⟨site.scope ++ [e.name.value], .enum index, site.file, e.name.span⟩ ::
    e.values.map fun v => ⟨site.scope ++ [v.name.value], .enumValue, site.file, v.name.span⟩

def ofEnum (site : Site) (index : Nat) (e : Decl.Enum) : Outline where
  names := enumNames site index e
  messages := []
  enums := [⟨e, site.scope ++ [e.name.value], site.file, site.parent⟩]

/-- Sibling enums, of which the first has number `next`. -/
def ofEnums (site : Site) (next : Nat) : List Decl.Enum → Outline
  | [] => empty
  | e :: rest => ofEnum site next e ++ ofEnums site (next + 1) rest

mutual

/-- A message with number `i`, in which the first enum has number `e`. -/
def ofMessage (site : Site) (i e : Nat) : Decl.Message → Outline
  | ⟨name, fields, messages, enums, reserved, settings, span⟩ =>
    let fullName := site.scope ++ [name.value]
    let inside : Site := ⟨site.file, fullName, some i⟩
    let ownEnums := e + enumsCount messages
    let self : Outline :=
      { names := [⟨fullName, .message i, site.file, name.span⟩]
        messages := [
          { decl := ⟨name, fields, messages, enums, reserved, settings, span⟩
            fullName, file := site.file, parent := site.parent
            messages := messageIndices (i + 1) messages
            enums := enumIndices ownEnums enums }]
        enums := [] }
    self ++ ofMessages inside (i + 1) e messages ++ ofEnums inside ownEnums enums

/-- Sibling messages, of which the first has number `i`; the first enum in them has number `e`. -/
def ofMessages (site : Site) (i e : Nat) : List Decl.Message → Outline
  | [] => empty
  | m :: rest =>
    ofMessage site i e m ++ ofMessages site (i + messageCount m) (e + enumCount m) rest

end

/-- The names of a package and of the packages around it, outermost first. -/
def packageNames (file : Nat) (p : Decl.Package) : List NameEntry :=
  (List.range p.name.names.length).map fun n =>
    ⟨p.name.names.take (n + 1), .package, file, p.span⟩

/-- A file with this number, in which the first message and enum have numbers `i` and `e`. -/
def ofFile (file i e : Nat) (f : SourceFile) : Outline :=
  let site : Site := ⟨file, f.package.getD [], none⟩
  let packages : Outline := ⟨(f.decl.package.map (packageNames file)).getD [], [], []⟩
  packages ++ ofMessages site i e f.decl.messages ++
    ofEnums site (e + enumsCount f.decl.messages) f.decl.enums

/-- The entry of a file in the schema. -/
def schemaFile (i e : Nat) (f : LoadedFile) : SchemaFile where
  name := f.source.name
  package := f.source.package
  edition := f.source.decl.edition
  messages := messageIndices i f.source.decl.messages
  enums := enumIndices (e + enumsCount f.source.decl.messages) f.source.decl.enums
  isRoot := f.isRoot

/-- All files in order, from the given numbers on. -/
def ofFilesFrom (file i e : Nat) : List LoadedFile → Outline × List SchemaFile
  | [] => (empty, [])
  | f :: rest =>
    let here := ofFile file i e f.source
    let (others, files) := ofFilesFrom (file + 1) (i + here.messages.length)
      (e + here.enums.length) rest
    (here ++ others, schemaFile i e f :: files)

def ofFiles (files : List LoadedFile) : Outline × List SchemaFile :=
  ofFilesFrom 0 0 0 files

end Outline

end Protobuf
