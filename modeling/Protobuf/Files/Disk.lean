import Protobuf.Files.Path
import Protobuf.Text.Utf8

/-! A tree of files and directories.

An entry is found by walking from the root, or from the working directory, one name at a time. Each
name on the way must be that of a directory. A slash at the end asks for a directory too. -/
namespace Protobuf

/-- Why a file could not be read or written. -/
inductive DiskFault where
  | notFound
  | alreadyThere
  | notADirectory
  | isADirectory
  | nameTooLong
  | nulByte
  deriving DecidableEq, Repr, Inhabited

def DiskFault.message : DiskFault → String
  | notFound => "No such file or directory (os error 2)"
  | alreadyThere => "File exists (os error 17)"
  | notADirectory => "Not a directory (os error 20)"
  | isADirectory => "Is a directory (os error 21)"
  | nameTooLong => "File name too long (os error 36)"
  | nulByte => "file name contained an unexpected NUL byte"

inductive DiskEntry where
  | directory
  | file (content : Bytes)
  deriving DecidableEq, Inhabited

/-- The names that lead to an entry from the root. -/
abbrev Location := List String

structure Disk where
  entries : List (Location × DiskEntry)
  /-- The working directory. -/
  current : Location
  deriving DecidableEq, Inhabited

namespace Disk

/-- The entry at a place; the root is always there. -/
def entry? (d : Disk) (place : Location) : Option DiskEntry :=
  if place.isEmpty then some .directory else d.entries.lookup place

def isDirectory (d : Disk) (place : Location) : Bool :=
  d.entry? place == some .directory

/-- Sets the entry at a place. -/
def set (d : Disk) (place : Location) (entry : DiskEntry) : Disk :=
  if (d.entries.lookup place).isSome then
    { d with entries := d.entries.map fun e => if e.1 = place then (place, entry) else e }
  else { d with entries := d.entries ++ [(place, entry)] }

/-! ### Walking -/

/-- The longest name and the longest path. -/
def maxName : Nat := 255

def maxPath : Nat := 4095

/-- Goes on by one name, which need not be there. -/
def stepTo (d : Disk) (place : Location) (name : String) : Except DiskFault Location :=
  if !d.isDirectory place then
    .error (if (d.entry? place).isSome then .notADirectory else .notFound)
  else if name = "." then .ok place
  else if name = ".." then .ok place.dropLast
  else if maxName < name.utf8ByteSize then .error .nameTooLong
  else .ok (place ++ [name])

def walk (d : Disk) (place : Location) : List String → Except DiskFault Location
  | [] => .ok place
  | name :: rest =>
    match d.stepTo place name with
    | .ok next => d.walk next rest
    | .error e => .error e

/-- The names in a path. -/
def names (path : String) : List String :=
  (Path.segments path).filter (· != "")

/-- The steps of a path. A slash at the end stands for a step on the spot. -/
def steps (path : String) : List String :=
  if path.toList.getLast? = some '/' then names path ++ ["."] else names path

/-- The place that these steps of a path lead to. -/
def follow (d : Disk) (path : String) (steps : List String) : Except DiskFault Location :=
  if path.toList.contains '\x00' then .error .nulByte
  else if path.isEmpty then .error .notFound
  else if maxPath < path.utf8ByteSize then .error .nameTooLong
  else d.walk (if Path.isAbsolute path then [] else d.current) steps

/-- The place that a path leads to. -/
def locate (d : Disk) (path : String) : Except DiskFault Location :=
  d.follow path (steps path)

/-! ### Reading -/

/-- The entry at a path. -/
def look (d : Disk) (path : String) : Except DiskFault DiskEntry :=
  match d.locate path with
  | .error e => .error e
  | .ok place =>
    match d.entry? place with
    | some entry => .ok entry
    | none => .error .notFound

/-- The content of a file. -/
def read (d : Disk) (path : String) : Except DiskFault Bytes :=
  match d.look path with
  | .error e => .error e
  | .ok .directory => .error .isADirectory
  | .ok (.file content) => .ok content

/-! ### Writing -/

/-- Makes a directory in one that is there. The path of a new directory may end in a slash. -/
def makeDirectory (d : Disk) (path : String) : Except DiskFault Disk :=
  match d.follow path (names path) with
  | .error e => .error e
  | .ok place =>
    if (d.entry? place).isSome then .error .alreadyThere
    else if d.isDirectory place.dropLast then .ok (d.set place .directory)
    else .error .notFound

def holdsDirectory (d : Disk) (path : String) : Bool :=
  match d.look path with
  | .ok entry => entry == .directory
  | .error _ => false

/-- Makes a directory and, up to a depth, those around it that are missing. What was made before a
failure stays. -/
def makeDirectoriesTo (d : Disk) : (depth : Nat) → String → Disk × Option DiskFault
  | 0, _ => (d, none)
  | depth + 1, path =>
    if path.isEmpty then (d, none)
    else
      match d.makeDirectory path with
      | .ok d' => (d', none)
      | .error .notFound =>
        match makeDirectoriesTo d depth ((Path.around? path).getD "") with
        | (d', some e) => (d', some e)
        | (d', none) =>
          match d'.makeDirectory path with
          | .ok d'' => (d'', none)
          | .error e => (d', if d'.holdsDirectory path then none else some e)
      | .error e => (d, if d.holdsDirectory path then none else some e)

/-- Makes a directory and those around it that are missing. No path is deeper than the number of its
components. -/
def makeDirectories (d : Disk) (path : String) : Disk × Option DiskFault :=
  d.makeDirectoriesTo ((Path.components path).length + 1) path

/-- Writes a file into a directory that is there. -/
def writeFile (d : Disk) (path : String) (content : Bytes) : Except DiskFault Disk :=
  match d.locate path with
  | .error e => .error e
  | .ok place =>
    match d.entry? place with
    | some .directory => .error .isADirectory
    | some (.file _) => .ok (d.set place (.file content))
    | none =>
      if d.isDirectory place.dropLast then .ok (d.set place (.file content)) else .error .notFound

/-- Writes a file, making the directories around it first. -/
def save (d : Disk) (path : String) (content : Bytes) : Disk × Option DiskFault :=
  match d.makeDirectories ((Path.around? path).getD "") with
  | (d', some e) => (d', some e)
  | (d', none) =>
    match d'.writeFile path content with
    | .ok d'' => (d'', none)
    | .error e => (d', some e)

/-! ### Comparing -/

/-- The files that were not there before, or had another content. -/
def changes (before after : Disk) : List (Location × Bytes) :=
  after.entries.filterMap fun (place, entry) =>
    match entry with
    | .directory => none
    | .file content => if before.entry? place = some entry then none else some (place, content)

/-- The path of a place under the working directory. -/
def pathHere? (d : Disk) (place : Location) : Option String :=
  if d.current.isPrefixOf place then some ("/".intercalate (place.drop d.current.length)) else none

/-- The changed files under the working directory, with their paths from there. -/
def changesHere (before after : Disk) : List (String × Bytes) :=
  (changes before after).filterMap fun (place, content) =>
    (after.pathHere? place).map fun path => (path, content)

end Disk

end Protobuf
