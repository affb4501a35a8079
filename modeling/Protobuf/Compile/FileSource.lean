import Protobuf.Compile.Error
import Protobuf.Source.File

/-! Where files come from.

A source opens files by name. It may also know under which name it would open the file at a path. A
chain of sources asks one after the other; only a file that is not found lets the next one try. -/
namespace Protobuf

structure FileSource where
  /-- The name of the file at a path, if the source knows one. -/
  nameOf : String → Option String
  load : String → Except CompileError SourceFile
  /-- Its files import no more names than this. -/
  extent : Nat

namespace FileSource

/-- The size of some entries together. -/
def total (size : α → Nat) (entries : List α) : Nat :=
  entries.foldr (fun entry others => size entry + others) 0

/-! ### Files in memory -/

/-- What a source in memory has under a name. -/
inductive Held where
  | text (content : String)
  | failure (text : String)
  | diskFailure (text : String)
  | nothing
  deriving DecidableEq, Repr, Inhabited

/-- The number of bytes. -/
def Held.size : Held → Nat
  | text content => content.utf8ByteSize
  | _ => 0

/-- Parses the text of a file with this name. -/
def parsed (name : String) (path : Option String) (text : String) :
    Except CompileError SourceFile :=
  match SourceFile.ofText name path text with
  | .ok f => .ok f
  | .error e => .error (.source e)

def memory (held : List (String × Held)) : FileSource where
  nameOf _ := none
  load name :=
    match held.lookup name with
    | some (.text content) => parsed name none content
    | some (.failure text) => .error (.custom text)
    | some (.diskFailure text) => .error (.customDisk text)
    | some .nothing | none => .error (.fileNotFound name)
  extent := total (·.2.size) held

/-! ### Files in a directory -/

def entrySize : DiskEntry → Nat
  | .file content => content.length
  | .directory => 0

/-- Opens the file with this name at a path. -/
def openAt (d : Disk) (name path : String) : Except CompileError SourceFile :=
  match d.read path with
  | .error .notFound => .error (.fileNotFound name)
  | .error fault => .error (.openFile name path fault)
  | .ok bytes =>
    if Grammar.maxSize < bytes.length then .error (.fileTooLarge name)
    else
      match Utf8.decode? bytes with
      | some text => parsed name (some path) text
      | none => .error (.invalidUtf8 name)

/-- The files in a directory, under their paths from there. -/
def directory (d : Disk) (path : String) : FileSource where
  nameOf p :=
    match (Path.inside? path p).bind Path.nameOf? with
    | some name => if name.isEmpty then none else some name
    | none => none
  load name := openAt d name (Path.join path name)
  extent := total (entrySize ·.2) d.entries

/-! ### Chains -/

def loadFirst (name : String) : List FileSource → Except CompileError SourceFile
  | [] => .error (.fileNotFound name)
  | s :: rest =>
    match s.load name with
    | .error e => if e.isNotFound then loadFirst name rest else .error e
    | .ok f => .ok f

def chain (sources : List FileSource) : FileSource where
  nameOf path := sources.findSome? (·.nameOf path)
  load name := loadFirst name sources
  extent := total (·.extent) sources

end FileSource

end Protobuf
